import Xv6Simplesh.Proc.Sound

/-! # Lazy and eager growth

`sys_sbrk` only moves the size of a growing process, and the page fault handler enters a
zeroed page at the first access.  `growproc` can still enter all pages at once.  With enough
memory a process cannot tell the two apart: what it reads and what `sbrk` returns is the same,
for any sequence of calls and accesses below its size.
-/

namespace Xv6Simplesh.Vm

open Library Function

/-! ## Two kernels -/

/-- How a kernel serves the memory of a process. -/
structure MemoryKernel where
  sbrk : Machine → Image → Int32 → Except Panic (Int × Image × Machine)
  /-- Whether the process is marked as killed. -/
  fault : Machine → Image → Bool → Nat → Except Panic (Bool × Machine)

/-- `sys_sbrk` with `growproc` in both directions. -/
def sysSbrkEager (k : Symbols) (m : Machine) (p : Image) (n : Int32) : Except Panic (Int × Image × Machine) := do
  let (grown, p', m) ← growproc k m p n.toInt
  .ok (if grown then p.sz else -1, p', m)

def lazyKernel (k : Symbols) : MemoryKernel where
  sbrk := sysSbrk k
  fault := pageFault k

/-- Every page fault is the mistake of the process. -/
def eagerKernel (k : Symbols) : MemoryKernel where
  sbrk := sysSbrkEager k
  fault m _ _ _ := .ok (true, m)

/-- What a process does to its memory; the kernel also loads and stores, in calls such as
`read` and `write`. -/
inductive MemoryCall where
  | sbrk (n : Int32)
  | load (userMode : Bool) (va : UInt32)
  | store (userMode : Bool) (va : UInt32) (byte : UInt8)

inductive Answer where
  | value (value : Int)
  | byte (byte : UInt8)
  | done
deriving DecidableEq, Repr

namespace MemoryKernel

/-- The page an access goes to.  After a page fault it is tried once more; there is no page if
the kernel panics, the process is killed or the access faults again. -/
def touch (kernel : MemoryKernel) (m : Machine) (p : Image) (userMode store : Bool) (va : Nat) : Option (Nat × Machine) :=
  match access m p.pgdir userMode store va with
  | some q => some (q, m)
  | none =>
    match kernel.fault m p userMode va with
    | .ok (false, m) => (access m p.pgdir userMode store va).map fun q => (q, m)
    | _ => none

def step (kernel : MemoryKernel) (m : Machine) (p : Image) : MemoryCall → Option (Answer × Image × Machine)
  | .sbrk n =>
    match kernel.sbrk m p n with
    | .ok (value, p, m) => some (.value value, p, m)
    | .error _ => none
  | .load userMode va =>
    match kernel.touch m p userMode false va.toNat with
    | some (q, m) => some (.byte (m.mem q (va.toNat % pgsize)), p, m)
    | none => none
  | .store userMode va byte =>
    match kernel.touch m p userMode true va.toNat with
    | some (q, m) => some (.done, p, m.setPage q (update (m.mem q) (va.toNat % pgsize) byte))
    | none => none

/-- The answers of a sequence of calls, each with the size of the process after it. -/
def run (kernel : MemoryKernel) : Machine → Image → List MemoryCall → Option (List (Answer × Nat))
  | _, _, [] => some []
  | m, p, call :: calls =>
    match kernel.step m p call with
    | some (answer, p, m) => (kernel.run m p calls).map fun answers => (answer, p.sz) :: answers
    | none => none

end MemoryKernel

/-! ## The sequences -/

/-- The size after a call: `sbrk` fails where it would reach the kernel. -/
def MemoryCall.sizeAfter (sz : Nat) : MemoryCall → Nat
  | .sbrk n => if sz + n.toInt < kernbase then (sz + n.toInt).toNat else sz
  | _ => sz

/-- `sbrk` leaves some memory and no more than `limit` pages, and the accesses are below the
size and not to page `guard`. -/
def MemoryCall.Proper (limit guard sz : Nat) : MemoryCall → Prop
  | .sbrk n => 0 < sz + n.toInt ∧ pageCount ((MemoryCall.sbrk n).sizeAfter sz) ≤ limit
  | .load _ va => va.toNat < sz ∧ va.toNat / pgsize ≠ guard
  | .store _ va _ => va.toNat < sz ∧ va.toNat / pgsize ≠ guard

def Proper (limit guard : Nat) : Nat → List MemoryCall → Prop
  | _, [] => True
  | sz, call :: calls => call.Proper limit guard sz ∧ Proper limit guard (call.sizeAfter sz) calls

instance (limit guard sz : Nat) (call : MemoryCall) : Decidable (call.Proper limit guard sz) :=
  match call with
  | .sbrk _ => inferInstanceAs (Decidable (_ ∧ _))
  | .load _ _ => inferInstanceAs (Decidable (_ ∧ _))
  | .store _ _ _ => inferInstanceAs (Decidable (_ ∧ _))

instance decidableProper (limit guard : Nat) : ∀ sz calls, Decidable (Proper limit guard sz calls)
  | _, [] => inferInstanceAs (Decidable True)
  | sz, call :: calls =>
    have := decidableProper limit guard (call.sizeAfter sz) calls
    inferInstanceAs (Decidable (_ ∧ _))

/-! ## Enough memory -/

/-- A sound address space with pages only below `n`, on a machine with memory for `limit`
pages and their page tables. -/
structure Roomy (k : Symbols) (limit n d : Nat) (m : Machine) : Prop where
  space : Space k m d
  above : ∀ v, n ≤ v → m.view d v = none
  fits : n ≤ limit
  room : limit + tablesFor limit ≤ m.total d (tablesFor limit)

section Roomy

variable {k : Symbols} {S : Nat → Prop} {limit n n' d : Nat} {m₀ m m' : Machine}

theorem Roomy.evo (roomy : Roomy k limit n d m) : Evolves k (m.Footprint d) d m m :=
  .refl roomy.space fun _ used => used

theorem Roomy.not_stuck {v : Nat} (roomy : Roomy k limit n d m) (inside : v < limit) (empty : m.view d v = none) :
    ¬ m.Stuck d v := by
  have fits := roomy.fits
  have room := roomy.room
  have pages : occupied userPages (m.view d) < (Finset.range limit).card := by
    refine occupied_lt (fun i _ out => roomy.above i ?_) (Finset.mem_range.mpr inside) empty
    rw [Finset.mem_range] at out
    omega
  have within : ∀ i < tablesFor limit, i ∉ Finset.range (tablesFor limit) → m.table d i = none :=
    fun i below out => absurd (Finset.mem_range.mpr below) out
  have tables := occupied_le within
  rw [Finset.card_range] at pages tables
  rw [Machine.total] at room
  intro stuck
  cases stuck with
  | inl none =>
    rw [none, List.length_nil] at room
    omega
  | inr last =>
    have row : v / nptentries < tablesFor limit := by
      dsimp only [tablesFor, nptentries]
      omega
    have fewer := occupied_lt within (Finset.mem_range.mpr row) last.2
    rw [Finset.card_range] at fewer
    omega

theorem Roomy.mono (roomy : Roomy k limit n d m) (le : n ≤ n') (fits : n' ≤ limit) : Roomy k limit n' d m :=
  ⟨roomy.space, fun v beyond => roomy.above v (Nat.le_trans le beyond), fits, roomy.room⟩

theorem Roomy.grown (roomy : Roomy k limit n d m) (grown : Grown k S d m₀ m m' n n') (le : n ≤ n') (fits : n' ≤ limit)
    (user : n' ≤ userPages) : Roomy k limit n' d m' where
  space := grown.evo.space
  above v beyond := by rw [grown.view, if_neg (by omega), roomy.above v (by omega)]
  fits := fits
  room := by
    rw [grown.total _ user (by dsimp only [tablesFor, nptentries]; omega)]
    exact roomy.room

theorem Roomy.cleared (roomy : Roomy k limit n d m) (cleared : Cleared k S d m₀ m m' n' n) (le : n' ≤ n) :
    Roomy k limit n' d m' where
  space := cleared.evo.space
  above v beyond := by
    rw [cleared.view]
    by_cases below : v < n
    · rw [if_pos ⟨beyond, below⟩]
    · rw [if_neg fun both => below both.2, roomy.above v (Nat.le_of_not_lt below)]
  fits := Nat.le_trans le roomy.fits
  room := by
    rw [cleared.total]
    exact roomy.room

theorem Roomy.store {v q : Nat} (roomy : Roomy k limit n d m) (held : frame v (m.pte d v) = some q) (bytes : Bytes) :
    Roomy k limit n d (m.setPage q bytes) := by
  have view := view_setPage roomy.space held bytes
  obtain ⟨tables, -⟩ := meaning_setPage bytes fun r holds => ⟨v, roomy.space.exclusive holds held⟩
  have there : m.view d v = some ⟨pteFlags (m.pte d v), m.mem q⟩ := view_of_frame held
  have count : occupied userPages ((m.setPage q bytes).view d) = occupied userPages (m.view d) := by
    rw [view]
    refine occupied_congr fun i _ => ?_
    by_cases same : i = v
    · rw [same, update_self, there]
      rfl
    · rw [update_of_ne same]
  refine ⟨(roomy.evo.store held bytes).space, fun u beyond => ?_, roomy.fits, ?_⟩
  · have other : u ≠ v := by
      rintro rfl
      rw [roomy.above u beyond] at there
      cases there
    rw [view, update_of_ne other, roomy.above u beyond]
  · rw [Machine.total, count, tables]
    exact roomy.room

/-! ## Accesses -/

/-- What an access to page `v` finds: the machine with the page `bytes` there, at `q`. -/
structure Touched (k : Symbols) (limit n d v : Nat) (m m' : Machine) (bytes : Bytes) (q : Nat) : Prop where
  roomy : Roomy k limit n d m'
  view : m'.view d = update (m.view d) v (some ⟨7, bytes⟩)
  held : frame v (m'.pte d v) = some q
  flags : pteFlags (m'.pte d v) = 7
  memory : m'.mem q = bytes

variable {sz va : Nat} {bytes : Bytes}

theorem touch_there (sz : Nat) (kernel : MemoryKernel) (userMode store : Bool) (roomy : Roomy k limit n d m) (low : va < kernbase)
    (there : m.view d (va / pgsize) = some ⟨7, bytes⟩) :
    ∃ q, kernel.touch m ⟨d, sz⟩ userMode store va = some (q, m) ∧ Touched k limit n d (va / pgsize) m m bytes q := by
  obtain ⟨q, held, flags, memory, allowed⟩ := access_of_view userMode store (Nat.lt_trans low (by decide)) there
  refine ⟨q, ?_, roomy, ?_, held, flags, memory⟩
  · rw [MemoryKernel.touch, allowed]
  · rw [← there, update_eq_self]

theorem touch_absent (userMode store : Bool) (roomy : Roomy k limit (pageCount sz) d m) (inside : va < sz)
    (small : sz < kernbase) (absent : m.view d (va / pgsize) = none) :
    ∃ q m', (lazyKernel k).touch m ⟨d, sz⟩ userMode store va = some (q, m') ∧
      Touched k limit (pageCount sz) d (va / pgsize) m m' (Bytes.fill 0) q := by
  have low : va < kernbase := Nat.lt_trans inside small
  have addr : va < 2 ^ 32 := Nat.lt_trans low (by decide)
  have page : va / pgsize < pageCount sz := lt_pageCount.mpr (Nat.lt_of_le_of_lt (Nat.div_mul_le_self va pgsize) inside)
  have user : va / pgsize < userPages := Nat.lt_of_lt_of_le page (pageCount_le (Nat.le_of_lt small))
  have within : va / pgsize < limit := Nat.lt_of_lt_of_le page roomy.fits
  have free := roomy.not_stuck within absent
  obtain ⟨killed, m', ran, faulted⟩ := pageFault_faulted roomy.evo addr (.inr inside : userMode = true ∨ _)
  cases faulted with
  | noPage empty => exact absurd (.inl empty) free
  | noTable last none => exact absurd (.inr ⟨by rw [last, List.length_singleton], none⟩) free
  | lost _ there => exact absurd there (not_present_of_view user absent)
  | @mapped q rest m' free _ mapped =>
    obtain ⟨-, -, -, -, view, total⟩ := roomy.evo.takePage free (Bytes.fill 0)
    have view' : m'.view d = update (m.view d) (va / pgsize) (some ⟨7, Bytes.fill 0⟩) := by
      rw [mapped.view, view, Machine.mem_setPage_self]
      rfl
    have there : m'.view d (va / pgsize) = some ⟨7, Bytes.fill 0⟩ := by rw [view', update_self]
    obtain ⟨q', held, flags, memory, allowed⟩ := access_of_view userMode store addr there
    refine ⟨q', m', ?_, ⟨mapped.evo.space, fun v beyond => ?_, roomy.fits, ?_⟩, view', held, flags, memory⟩
    · simp only [MemoryKernel.touch, access_of_none userMode store low absent, lazyKernel, ran, allowed, Option.map_some]
    · rw [view', update_of_ne (by omega), roomy.above v beyond]
    · rw [mapped.total _ user (by dsimp only [tablesFor, nptentries]; omega)]
      exact Nat.le_trans roomy.room (Nat.le_of_eq (total _).symm)

theorem Touched.store {v q : Nat} (touched : Touched k limit n d v m m' bytes q) (new : Bytes) :
    Roomy k limit n d (m'.setPage q new) ∧
      (m'.setPage q new).view d = update (m.view d) v (some ⟨7, new⟩) := by
  refine ⟨touched.roomy.store touched.held new, ?_⟩
  rw [view_setPage touched.roomy.space touched.held, touched.flags, touched.view, update_idem]

/-! ## `growproc` -/

theorem growproc_grow {amount : Int} (roomy : Roomy k limit (pageCount sz) d m) (small : sz < kernbase) (grows : 0 ≤ amount)
    (below : sz + amount < kernbase) (fits : pageCount (sz + amount).toNat ≤ limit) :
    ∃ m', growproc k m ⟨d, sz⟩ amount = .ok (true, ⟨d, (sz + amount).toNat⟩, m') ∧
      Grown k (m.Footprint d) d m m m' (pageCount sz) (pageCount (sz + amount).toNat) := by
  by_cases none : amount = 0
  · subst none
    have same : (sz + 0 : Int).toNat = sz := by omega
    rw [same]
    exact ⟨m, rfl, .refl roomy.evo (Nat.le_refl _)⟩
  have grows : 0 < amount := by omega
  obtain ⟨newsz, new⟩ : ∃ newsz, newsz = (sz + amount).toNat := ⟨_, rfl⟩
  have size : ((sz + amount) % 2 ^ 32).toNat = newsz := by
    dsimp only [kernbase] at below
    omega
  rw [← new] at fits ⊢
  have larger : sz < newsz := by omega
  have user : newsz ≤ kernbase := by omega
  have more : pageCount sz ≤ pageCount newsz := by
    dsimp only [pageCount, pgsize]
    omega
  have rounded : pgroundup sz = pageCount sz * pgsize := pgroundup_eq (Nat.le_of_lt small)
  have absent : ∀ u, pageCount sz ≤ u → u < pageCount newsz → ¬ present (m.pte d u) := fun u from' to' =>
    not_present_of_view (Nat.lt_of_lt_of_le to' (pageCount_le user)) (roomy.above u from')
  rw [growproc, if_pos grows, size]
  simp only [allocuvm, if_neg (Nat.not_le.mpr (show newsz < kernbase by omega)),
    if_neg (Nat.not_lt.mpr (Nat.le_of_lt larger)), rounded]
  rcases allocuvmLoop_grown sz roomy.evo user absent with
    ⟨m', ran, grown⟩ | ⟨m', ran, -, -, -, u, m₁, from', to', grown, stuck⟩
  · refine ⟨m', ?_, grown⟩
    simp only [ran, bind, Except.bind]
    rw [if_neg (by omega)]
  · -- the pages so far and the next one fit
    have roomy₁ := roomy.grown grown from' (by omega) (by have := pageCount_le user; omega)
    exact absurd stuck (roomy₁.not_stuck (by omega) (roomy₁.above u (Nat.le_refl u)))

theorem growproc_beyond {amount : Int} (k : Symbols) (m : Machine) (d : Nat) (grows : 0 < amount)
    (beyond : kernbase ≤ sz + amount) (small : sz + amount < 2 ^ 32) :
    growproc k m ⟨d, sz⟩ amount = .ok (false, ⟨d, sz⟩, m) := by
  have large : ((sz + amount) % 2 ^ 32).toNat ≥ kernbase := by omega
  rw [growproc, if_pos grows]
  simp only [allocuvm, if_pos large, bind, Except.bind, if_true]

theorem growproc_shrink {amount : Int} (space : Space k m d) (small : sz < kernbase) (shrinks : amount < 0)
    (some : 0 < sz + amount) :
    ∃ m', growproc k m ⟨d, sz⟩ amount = .ok (true, ⟨d, (sz + amount).toNat⟩, m') ∧
      Cleared k (m.Footprint d) d m m m' (pageCount (sz + amount).toNat) (pageCount sz) := by
  obtain ⟨newsz, new⟩ : ∃ newsz, newsz = (sz + amount).toNat := ⟨_, rfl⟩
  have size : ((sz + amount) % 2 ^ 32).toNat = newsz := by
    dsimp only [kernbase] at small
    omega
  rw [← new]
  obtain ⟨m', freed, cleared⟩ := deallocuvm_cleared newsz (Evolves.refl space fun _ used => used) (Nat.le_of_lt small)
  refine ⟨m', ?_, cleared⟩
  rw [if_neg (by omega)] at freed
  rw [growproc, if_neg (by omega), if_pos shrinks, size]
  simp only [freed, bind, Except.bind]
  rw [if_neg (by omega)]

end Roomy

/-! ## The same answers -/

/-- The pages below `n` of an eager address space, apart from page `guard`, are there, and those
of the lazy one have the same bytes or are absent where these are zeros. -/
def Covered (n guard : Nat) (view view' : Nat → Option Page) : Prop :=
  ∀ v < n, v ≠ guard → ∃ bytes, view' v = some ⟨7, bytes⟩ ∧
    (view v = some ⟨7, bytes⟩ ∨ view v = none ∧ bytes = Bytes.fill 0)

theorem Covered.set {n guard : Nat} {view view' : Nat → Option Page} (covered : Covered n guard view view') (v : Nat)
    (bytes : Bytes) : Covered n guard (update view v (some ⟨7, bytes⟩)) (update view' v (some ⟨7, bytes⟩)) := by
  intro u below other
  by_cases same : u = v
  · subst same
    exact ⟨bytes, update_self .., .inl (update_self ..)⟩
  · simp only [update_of_ne same]
    exact covered u below other

/-- A process of size `sz` on the lazy kernel, in directory `d` of machine `m`, and on the eager
one, in directory `d'` of machine `m'`. -/
structure Alike (k : Symbols) (limit guard sz d : Nat) (m : Machine) (d' : Nat) (m' : Machine) : Prop where
  small : sz < kernbase
  lazy : Roomy k limit (pageCount sz) d m
  eager : Roomy k limit (pageCount sz) d' m'
  covered : Covered (pageCount sz) guard (m.view d) (m'.view d')

section Alike

variable {k : Symbols} {limit guard sz d d' : Nat} {m m' : Machine}

section

variable (alike : Alike k limit guard sz d m d' m')

include alike

theorem Alike.sbrk {n : Int32} (proper : (MemoryCall.sbrk n).Proper limit guard sz) :
    ∃ value m₁ m₁', sysSbrk k m ⟨d, sz⟩ n = .ok (value, ⟨d, (MemoryCall.sbrk n).sizeAfter sz⟩, m₁) ∧
      sysSbrkEager k m' ⟨d', sz⟩ n = .ok (value, ⟨d', (MemoryCall.sbrk n).sizeAfter sz⟩, m₁') ∧
      Alike k limit guard ((MemoryCall.sbrk n).sizeAfter sz) d m₁ d' m₁' := by
  obtain ⟨some, fits⟩ := proper
  have small := alike.small
  have upper := n.toInt_lt
  rw [sysSbrk, sysSbrkEager]
  by_cases shrinks : n < 0
  · -- both go through `deallocuvm`
    have negative : n.toInt < 0 := by rwa [Int32.lt_iff_toInt_lt] at shrinks
    have below : sz + n.toInt < kernbase := by omega
    rw [MemoryCall.sizeAfter, if_pos below] at fits ⊢
    obtain ⟨m₁, ran, cleared⟩ := growproc_shrink alike.lazy.space small negative some
    obtain ⟨m₁', ran', cleared'⟩ := growproc_shrink alike.eager.space small negative some
    have fewer : pageCount (sz + n.toInt).toNat ≤ pageCount sz := by
      dsimp only [pageCount, pgsize]
      omega
    refine ⟨sz, m₁, m₁', ?_, ?_, by omega, alike.lazy.cleared cleared fewer, alike.eager.cleared cleared' fewer,
      fun v inside other => ?_⟩
    · simp only [if_pos shrinks, ran, bind, Except.bind, if_true]
    · simp only [ran', bind, Except.bind, if_true]
    · rw [cleared.view, cleared'.view, if_neg (by omega), if_neg (by omega)]
      exact alike.covered v (by omega) other
  · have nonneg : 0 ≤ n.toInt := by
      rw [Int32.lt_iff_toInt_lt] at shrinks
      exact Int.not_lt.mp shrinks
    have sum : (sz + n.toInt.toNat) % 2 ^ 32 = (sz + n.toInt).toNat := by
      dsimp only [kernbase] at small
      omega
    rw [if_neg shrinks, sum]
    by_cases below : sz + n.toInt < kernbase
    · rw [MemoryCall.sizeAfter, if_pos below] at fits ⊢
      have more : pageCount sz ≤ pageCount (sz + n.toInt).toNat := by
        dsimp only [pageCount, pgsize]
        omega
      have moved : sz + n.toInt.toNat = (sz + n.toInt).toNat := by omega
      have size : ¬ (sz + n.toInt).toNat ≥ kernbase := by omega
      obtain ⟨m₁', ran', grown⟩ := growproc_grow alike.eager small nonneg below fits
      have user : pageCount (sz + n.toInt).toNat ≤ userPages := pageCount_le (by omega)
      refine ⟨sz, m, m₁', ?_, ?_, by omega, alike.lazy.mono more fits, alike.eager.grown grown more fits user,
        fun v inside other => ?_⟩
      · rw [if_neg size, moved]
      · simp only [ran', bind, Except.bind, if_true]
      · rw [grown.view]
        by_cases old : v < pageCount sz
        · rw [if_neg (by omega)]
          exact alike.covered v old other
        · exact ⟨Bytes.fill 0, if_pos ⟨Nat.le_of_not_lt old, inside⟩, .inr ⟨alike.lazy.above v (Nat.le_of_not_lt old), rfl⟩⟩
    · -- beyond `KERNBASE` both fail
      have large : (sz + n.toInt).toNat ≥ kernbase := by omega
      have ran' := growproc_beyond k m' d' (by omega : 0 < n.toInt) (by omega : kernbase ≤ sz + n.toInt)
        (by dsimp only [kernbase] at small; omega)
      rw [MemoryCall.sizeAfter, if_neg below]
      refine ⟨-1, m, m', ?_, ?_, alike⟩
      · rw [if_pos large]
      · simp only [ran', bind, Except.bind]
        rfl

theorem Alike.touch (userMode store : Bool) {va : Nat} (inside : va < sz) (other : va / pgsize ≠ guard) :
    ∃ bytes q m₁ q', (lazyKernel k).touch m ⟨d, sz⟩ userMode store va = some (q, m₁) ∧
      (eagerKernel k).touch m' ⟨d', sz⟩ userMode store va = some (q', m') ∧
      Touched k limit (pageCount sz) d (va / pgsize) m m₁ bytes q ∧
      Touched k limit (pageCount sz) d' (va / pgsize) m' m' bytes q' := by
  have low : va < kernbase := Nat.lt_trans inside alike.small
  have page : va / pgsize < pageCount sz := lt_pageCount.mpr (Nat.lt_of_le_of_lt (Nat.div_mul_le_self va pgsize) inside)
  obtain ⟨bytes, there', found⟩ := alike.covered _ page other
  obtain ⟨q', ran', touched'⟩ := touch_there sz (eagerKernel k) userMode store alike.eager low there'
  cases found with
  | inl there =>
    obtain ⟨q, ran, touched⟩ := touch_there sz (lazyKernel k) userMode store alike.lazy low there
    exact ⟨bytes, q, m, q', ran, ran', touched, touched'⟩
  | inr absent =>
    obtain ⟨absent, rfl⟩ := absent
    obtain ⟨q, m₁, ran, touched⟩ := touch_absent userMode store alike.lazy inside alike.small absent
    exact ⟨_, q, m₁, q', ran, ran', touched, touched'⟩

theorem Alike.step {call : MemoryCall} (proper : call.Proper limit guard sz) :
    ∃ answer m₁ m₁', (lazyKernel k).step m ⟨d, sz⟩ call = some (answer, ⟨d, call.sizeAfter sz⟩, m₁) ∧
      (eagerKernel k).step m' ⟨d', sz⟩ call = some (answer, ⟨d', call.sizeAfter sz⟩, m₁') ∧
      Alike k limit guard (call.sizeAfter sz) d m₁ d' m₁' := by
  cases call with
  | sbrk n =>
    obtain ⟨value, m₁, m₁', ran, ran', alike'⟩ := alike.sbrk proper
    refine ⟨.value value, m₁, m₁', ?_, ?_, alike'⟩
    · simp only [MemoryKernel.step, lazyKernel, ran]
    · simp only [MemoryKernel.step, eagerKernel, ran']
  | load userMode va =>
    obtain ⟨bytes, q, m₁, q', ran, ran', touched, touched'⟩ := alike.touch userMode false proper.1 proper.2
    refine ⟨.byte (bytes (va.toNat % pgsize)), m₁, m', ?_, ?_, alike.small, touched.roomy, alike.eager, ?_⟩
    · simp only [MemoryKernel.step, ran, touched.memory, MemoryCall.sizeAfter]
    · simp only [MemoryKernel.step, ran', touched'.memory, MemoryCall.sizeAfter]
    · rw [touched.view, touched'.view]
      exact alike.covered.set _ bytes
  | store userMode va byte =>
    obtain ⟨bytes, q, m₁, q', ran, ran', touched, touched'⟩ := alike.touch userMode true proper.1 proper.2
    obtain ⟨roomy, view⟩ := touched.store (update bytes (va.toNat % pgsize) byte)
    obtain ⟨roomy', view'⟩ := touched'.store (update bytes (va.toNat % pgsize) byte)
    refine ⟨.done, _, _, ?_, ?_, alike.small, roomy, roomy', ?_⟩
    · simp only [MemoryKernel.step, ran, touched.memory, MemoryCall.sizeAfter]
    · simp only [MemoryKernel.step, ran', touched'.memory, MemoryCall.sizeAfter]
    · rw [view, view']
      exact alike.covered.set _ _

theorem Alike.run {calls : List MemoryCall} (proper : Proper limit guard sz calls) :
    ∃ answers, (lazyKernel k).run m ⟨d, sz⟩ calls = some answers ∧ (eagerKernel k).run m' ⟨d', sz⟩ calls = some answers := by
  induction calls generalizing sz m m' with
  | nil => exact ⟨[], rfl, rfl⟩
  | cons call calls ih =>
    obtain ⟨answer, m₁, m₁', ran, ran', alike₁⟩ := alike.step proper.1
    obtain ⟨answers, rest, rest'⟩ := ih alike₁ proper.2
    refine ⟨(answer, call.sizeAfter sz) :: answers, ?_, ?_⟩
    · simp only [MemoryKernel.run, ran, rest, Option.map_some]
    · simp only [MemoryKernel.run, ran', rest', Option.map_some]

end

/-- The images that `exec` makes of one program on two machines. -/
theorem Executed.alike {m₀ m₀' : Machine} {c c' : Nat} {p p' : Image} (made : Executed k m₀ c p m)
    (made' : Executed k m₀' c' p' m') (pages : ∀ v, m'.view p'.pgdir v = m.view p.pgdir v)
    (memory : limit + tablesFor limit ≤ m.total p.pgdir (tablesFor limit))
    (memory' : limit + tablesFor limit ≤ m'.total p'.pgdir (tablesFor limit)) (fits : pageCount p.sz ≤ limit) :
    Alike k limit (pageCount p.sz - 2) p.sz p.pgdir m p'.pgdir m' := by
  obtain ⟨n, whole, small, there, above⟩ := made.pages
  have count : pageCount p.sz = n + 2 := by rw [whole, pageCount_mul]
  rw [← count] at there above
  refine ⟨?_, ⟨made.space, above, fits, memory⟩, ⟨made'.space, fun v beyond => ?_, fits, memory'⟩, ?_⟩
  · dsimp only [pgsize, userPages, kernbase] at whole small ⊢
    omega
  · rw [pages, above v beyond]
  · intro v inside other
    obtain ⟨bytes, view⟩ := there v inside
    rw [pageFlags, if_neg fun same => other (by rw [count]; exact (Option.some.inj same).symm)] at view
    exact ⟨bytes, by rw [pages]; exact view, .inl view⟩

end Alike

/-- Two machines start from the same image of a program, made by `exec`, and have memory for
`limit` pages.  On any sequence of calls that stays within the limit, lazy growth and eager
growth give the same answers, and the process has the same size after each call. -/
theorem lazy_eq_eager {k : Symbols} {limit c c' : Nat} {m₀ m₀' m m' : Machine} {p p' : Image} {calls : List MemoryCall}
    (made : Executed k m₀ c p m) (made' : Executed k m₀' c' p' m') (size : p'.sz = p.sz)
    (pages : ∀ v, m'.view p'.pgdir v = m.view p.pgdir v)
    (memory : limit + tablesFor limit ≤ m.total p.pgdir (tablesFor limit))
    (memory' : limit + tablesFor limit ≤ m'.total p'.pgdir (tablesFor limit)) (fits : pageCount p.sz ≤ limit)
    (proper : Proper limit (pageCount p.sz - 2) p.sz calls) :
    ∃ answers, (lazyKernel k).run m p calls = some answers ∧ (eagerKernel k).run m' p' calls = some answers := by
  have alike := made.alike made' pages memory memory' fits
  obtain ⟨answers, ran, ran'⟩ := alike.run proper
  refine ⟨answers, ran, ?_⟩
  rw [← size] at ran'
  exact ran'

/-- The first program stores to its stack page, grows by two pages, uses the second of them, and
gives both back. -/
theorem lazy_eq_eager_emptyProgram : ∃ m p answers,
    (lazyKernel smallKernel).run m p
      [.store true 4100 7, .sbrk 8192, .load false 12300, .store true 12300 9, .load true 12300, .sbrk (-8192)] =
        some answers ∧
    (eagerKernel smallKernel).run m p
      [.store true 4100 7, .sbrk 8192, .load false 12300, .store true 12300 9, .load true 12300, .sbrk (-8192)] =
        some answers := by
  obtain ⟨w, d, s, -, runs⟩ := programRuns_reachable smallKernel (by decide)
  obtain ⟨m₀, c, made⟩ := runs.executed
  have memory : 4 + tablesFor 4 ≤ w.machine.total d (tablesFor 4) := by
    have free : w.machine.freelist.length ≤ w.machine.total d (tablesFor 4) :=
      Nat.le_trans (Nat.le_add_right _ _) (Nat.le_add_right _ _)
    exact Nat.le_trans (by decide) (Nat.le_trans runs.free free)
  exact ⟨w.machine, ⟨d, 8192⟩, lazy_eq_eager made made rfl (fun _ => rfl) memory memory
    (by decide : pageCount 8192 ≤ 4) (by decide : Proper 4 (pageCount 8192 - 2) 8192 _)⟩

end Xv6Simplesh.Vm
