import Xv6Simplesh.Vm.Scan

/-! # `copyout`

`uva2ka` asks `walkpgdir` for the entry of a page and looks at it.  Where the directory has no
page table `walkpgdir` returns a null pointer, and the kernel reads the word at address 0 of
whatever process is running.  If that word looks like an entry of the user, `copyout` stores to
the page it names, which need not be a page of the directory at all.

What was meant is `copyUser`, which takes a page without a table for one that is not there.
`copyout` does the same, and never looks through a null pointer, if and only if every page that
the copy comes to has a page table and no entry of the user points out of the memory.
-/

namespace Xv6Simplesh.Vm

open Library

/-! ## What was meant -/

/-- The page behind the entry for virtual page `v`, if it is present and for the user. -/
def Machine.userPage (m : Machine) (d v : Nat) : Option Nat :=
  if present (m.pte d v) ∧ user (m.pte d v) then some (ptePage (m.pte d v)) else none

/-- The number of bytes that fit into the page of `va`. -/
def chunk (va len : Nat) : Nat := min (pgsize - (va - pgrounddown va)) len

/-- The first address of the next page. -/
def nextPage (va : Nat) : Nat := (pgrounddown va + pgsize) % 2 ^ 32

/-- The bytes that fit, stored in page `q`. -/
def Machine.fillPage (m : Machine) (q va : Nat) (p : Nat → UInt8) (len : Nat) : Machine :=
  m.setPage q ((m.mem q).copy (va - pgrounddown va) p (chunk va len))

/-- Every byte to a page of the user, or false at the first page that is not one. -/
def copyUser (m : Machine) (d va : Nat) (p : Nat → UInt8) (len : Nat) : Bool × Machine :=
  if len > 0 then
    match m.userPage d (va / pgsize) with
    | none => (false, m)
    | some q => copyUser (m.fillPage q va p len) d (nextPage va) (fun i => p (chunk va len + i)) (len - chunk va len)
  else (true, m)
termination_by len
decreasing_by
  dsimp only [chunk, pgrounddown, pgsize]
  omega

/-- The pointers that `copyout` looks through, none for the null pointer. -/
def copyoutReads (k : Symbols) (m : Machine) (cur : Image) (d va : Nat) (p : Nat → UInt8) (len : Nat) :
    List (Option (Nat × Nat)) :=
  if len > 0 then
    (walkpgdir m d (pgrounddown va) false).1 ::
      match uva2ka k m cur d (pgrounddown va) with
      | .error _ => []
      | .ok (none, _) => []
      | .ok (some q, m) =>
        if q * pgsize ≥ phystop then []
        else copyoutReads k (m.fillPage q va p len) cur d (nextPage va) (fun i => p (chunk va len + i)) (len - chunk va len)
  else []
termination_by len
decreasing_by
  dsimp only [chunk, pgrounddown, pgsize]
  omega

/-- `uva2ka` looks through a pointer to an entry and finds what it says. -/
structure LookupChecked (k : Symbols) (m : Machine) (cur : Image) (d uva : Nat) : Prop where
  pointer : (walkpgdir m d uva false).1 ≠ none
  result : uva2ka k m cur d uva = .ok (m.userPage d (uva / pgsize), m)

/-- `copyout` never looks through the null pointer, and copies everything or returns -1. -/
structure CopyChecked (k : Symbols) (m : Machine) (cur : Image) (d va : Nat) (p : Nat → UInt8) (len : Nat) : Prop where
  pointers : none ∉ copyoutReads k m cur d va p len
  result : copyout k m cur d va p len = .ok (copyUser m d va p len)

/-! ## When it is so -/

/-- Every page that the copy comes to has a page table at that time, and the pages of the user
among them are pages of the memory. -/
inductive Tabled (d : Nat) : Machine → Nat → (Nat → UInt8) → Nat → Prop where
  | done {m : Machine} {va : Nat} {p : Nat → UInt8} : Tabled d m va p 0
  /-- The copy ends at a page that is not one of the user. -/
  | stop {m : Machine} {va len : Nat} {p : Nat → UInt8} (table : m.table d (va / pgsize / nptentries) ≠ none)
      (page : m.userPage d (va / pgsize) = none) : Tabled d m va p len
  | page {m : Machine} {va len q : Nat} {p : Nat → UInt8} (page : m.userPage d (va / pgsize) = some q)
      (memory : q * pgsize < phystop)
      (rest : Tabled d (m.fillPage q va p len) (nextPage va) (fun i => p (chunk va len + i)) (len - chunk va len)) :
      Tabled d m va p len

/-- The same for a directory that the copy cannot change: the pages of the range, as far as the
pages before them are pages of the user. -/
def PagesTabled (m : Machine) (d va len : Nat) : Prop :=
  ∀ i, 0 < len → i * pgsize < va % pgsize + len → (∀ j < i, m.userPage d ((va / pgsize + j) % 2 ^ 20) ≠ none) →
    m.table d ((va / pgsize + i) % 2 ^ 20 / nptentries) ≠ none ∧
      ∀ q, m.userPage d ((va / pgsize + i) % 2 ^ 20) = some q → q * pgsize < phystop

/-- No page of the user is the directory or one of its tables. -/
def Apart (m : Machine) (d : Nat) : Prop :=
  ∀ v q, m.userPage d v = some q → q ≠ d ∧ ∀ i, m.table d i ≠ some q

section Copyout

variable {k : Symbols} {m : Machine} {cur : Image} {d va len q : Nat} {p : Nat → UInt8}

theorem pgrounddown_page (va : Nat) : pgrounddown va / pgsize = va / pgsize :=
  Nat.mul_div_cancel _ (by decide)

theorem chunk_pos (more : 0 < len) (va : Nat) : 0 < chunk va len := by
  dsimp only [chunk, pgrounddown, pgsize]
  omega

theorem nextPage_lt (va : Nat) : nextPage va < 2 ^ 32 := Nat.mod_lt _ (by decide)

theorem table_of_userPage (page : m.userPage d (va / pgsize) = some q) :
    m.table d (va / pgsize / nptentries) ≠ none := by
  intro absent
  rw [Machine.userPage, pte_of_none absent] at page
  cases page

theorem uva2ka_of_table (k : Symbols) (cur : Image) (addr : va < 2 ^ 32)
    (table : m.table d (va / pgsize / nptentries) ≠ none) : uva2ka k m cur d va = .ok (m.userPage d (va / pgsize), m) := by
  obtain ⟨t, found⟩ := Option.ne_none_iff_exists'.mp table
  have deref : derefPte k m cur d va = .ok (m.pte d (va / pgsize), m) := by
    rw [derefPte, walkpgdir_false addr, found, pte_of_table found]
    rfl
  rw [uva2ka, deref, Machine.userPage]
  by_cases there : present (m.pte d (va / pgsize))
  · by_cases visible : user (m.pte d (va / pgsize))
    · simp [bind, Except.bind, there, visible]
    · simp [bind, Except.bind, there, visible]
  · simp [bind, Except.bind, there]

theorem walkpgdir_ne_none (addr : va < 2 ^ 32) :
    (walkpgdir m d va false).1 ≠ none ↔ m.table d (va / pgsize / nptentries) ≠ none := by
  rw [walkpgdir_false addr, ne_eq, Option.map_eq_none_iff]

theorem lookupChecked_iff (k : Symbols) (cur : Image) (addr : va < 2 ^ 32) :
    LookupChecked k m cur d va ↔ m.table d (va / pgsize / nptentries) ≠ none := by
  constructor
  · intro checked
    exact (walkpgdir_ne_none addr).mp checked.pointer
  · intro table
    exact ⟨(walkpgdir_ne_none addr).mpr table, uva2ka_of_table k cur addr table⟩

/-! ### One page -/

theorem uva2ka_page (k : Symbols) (cur : Image) (addr : va < 2 ^ 32)
    (table : m.table d (va / pgsize / nptentries) ≠ none) :
    uva2ka k m cur d (pgrounddown va) = .ok (m.userPage d (va / pgsize), m) := by
  have below : pgrounddown va < 2 ^ 32 := Nat.lt_of_le_of_lt (Nat.div_mul_le_self va pgsize) addr
  have found := uva2ka_of_table k cur below (by rwa [pgrounddown_page])
  rwa [pgrounddown_page] at found

theorem copyout_userPage (k : Symbols) (cur : Image) (addr : va < 2 ^ 32) (more : 0 < len)
    (page : m.userPage d (va / pgsize) = some q) :
    copyout k m cur d va p len =
      if q * pgsize ≥ phystop then .error .wildPointer
      else copyout k (m.fillPage q va p len) cur d (nextPage va) (fun i => p (chunk va len + i)) (len - chunk va len) := by
  rw [copyout, if_pos more]
  dsimp only
  rw [uva2ka_page k cur addr (table_of_userPage page), page]
  rfl

theorem copyoutReads_userPage (k : Symbols) (cur : Image) (addr : va < 2 ^ 32) (more : 0 < len)
    (page : m.userPage d (va / pgsize) = some q) :
    copyoutReads k m cur d va p len = (walkpgdir m d (pgrounddown va) false).1 ::
      if q * pgsize ≥ phystop then []
      else copyoutReads k (m.fillPage q va p len) cur d (nextPage va) (fun i => p (chunk va len + i))
        (len - chunk va len) := by
  rw [copyoutReads, if_pos more, uva2ka_page k cur addr (table_of_userPage page), page]

/-- A copy that begins without looking through the null pointer begins at a page table. -/
theorem table_of_pointers (addr : va < 2 ^ 32) (more : 0 < len)
    (pointers : none ∉ copyoutReads k m cur d va p len) : m.table d (va / pgsize / nptentries) ≠ none := by
  rw [copyoutReads, if_pos more] at pointers
  have below : pgrounddown va < 2 ^ 32 := Nat.lt_of_le_of_lt (Nat.div_mul_le_self va pgsize) addr
  have first := (walkpgdir_ne_none below).mp (Ne.symm (List.ne_of_not_mem_cons pointers))
  rwa [pgrounddown_page] at first

theorem copyChecked_iff (k : Symbols) (cur : Image) (addr : va < 2 ^ 32) :
    CopyChecked k m cur d va p len ↔ Tabled d m va p len := by
  induction left : len using Nat.strong_induction_on generalizing va p len m with
  | _ left ih =>
  subst left
  by_cases more : 0 < len
  · have shorter : len - chunk va len < len := Nat.sub_lt more (chunk_pos more va)
    have below : pgrounddown va < 2 ^ 32 := Nat.lt_of_le_of_lt (Nat.div_mul_le_self va pgsize) addr
    cases page : m.userPage d (va / pgsize) with
    | none =>
      have stops : ∀ table : m.table d (va / pgsize / nptentries) ≠ none, CopyChecked k m cur d va p len := by
        intro table
        have first : (walkpgdir m d (pgrounddown va) false).1 ≠ none := by
          rwa [walkpgdir_ne_none below, pgrounddown_page]
        constructor
        · rw [copyoutReads, if_pos more, uva2ka_page k cur addr table, page]
          exact fun member => first (List.mem_singleton.mp member).symm
        · rw [copyout, if_pos more, copyUser, if_pos more, page]
          dsimp only
          rw [uva2ka_page k cur addr table, page]
      constructor
      · intro checked
        exact .stop (table_of_pointers addr more checked.pointers) page
      · intro tabled
        cases tabled with
        | done => exact absurd more (Nat.lt_irrefl 0)
        | stop table _ => exact stops table
        | page found _ _ => rw [page] at found; cases found
    | some q =>
      have rest : CopyChecked k (m.fillPage q va p len) cur d (nextPage va) (fun i => p (chunk va len + i))
            (len - chunk va len) ↔
          Tabled d (m.fillPage q va p len) (nextPage va) (fun i => p (chunk va len + i)) (len - chunk va len) :=
        ih _ shorter (nextPage_lt va) rfl
      have first : (walkpgdir m d (pgrounddown va) false).1 ≠ none := by
        rw [walkpgdir_ne_none below, pgrounddown_page]
        exact table_of_userPage page
      have meant : copyUser m d va p len =
          copyUser (m.fillPage q va p len) d (nextPage va) (fun i => p (chunk va len + i)) (len - chunk va len) := by
        rw [copyUser, if_pos more, page]
      constructor
      · intro ⟨pointers, result⟩
        rw [copyout_userPage k cur addr more page] at result
        rw [copyoutReads_userPage k cur addr more page] at pointers
        by_cases wild : q * pgsize ≥ phystop
        · rw [if_pos wild] at result
          cases result
        · rw [if_neg wild] at result pointers
          refine .page page (Nat.lt_of_not_le wild) (rest.mp ⟨List.not_mem_of_not_mem_cons pointers, ?_⟩)
          rw [result, meant]
      · intro tabled
        cases tabled with
        | done => exact absurd more (Nat.lt_irrefl 0)
        | stop _ none => rw [page] at none; cases none
        | page found memory later =>
          obtain rfl : q = _ := Option.some.inj (page.symm.trans found)
          obtain ⟨pointers, result⟩ := rest.mpr later
          have inside : ¬ q * pgsize ≥ phystop := Nat.not_le.mpr memory
          constructor
          · rw [copyoutReads_userPage k cur addr more page, if_neg inside]
            exact List.not_mem_cons_of_ne_of_not_mem first.symm pointers
          · rw [copyout_userPage k cur addr more page, if_neg inside, result, meant]
  · obtain rfl : len = 0 := by omega
    refine iff_of_true ⟨?_, ?_⟩ .done
    · rw [copyoutReads, if_neg more]
      exact List.not_mem_nil
    · rw [copyout, copyUser, if_neg more, if_neg more]

/-! ### A directory that the copy cannot change -/

theorem fillPage_meaning (p : Nat → UInt8) (len : Nat) (apart : Apart m d) (page : m.userPage d (va / pgsize) = some q) :
    (m.fillPage q va p len).table d = m.table d ∧ (m.fillPage q va p len).pte d = m.pte d := by
  obtain ⟨dir, tables⟩ := apart _ q page
  have same : (m.fillPage q va p len).mem d = m.mem d := m.mem_setPage_of_ne _ dir.symm
  refine ⟨table_congr same, pte_congr same fun i t found => m.mem_setPage_of_ne _ ?_⟩
  intro eq
  exact tables i (eq ▸ found)

theorem userPage_fillPage (p : Nat → UInt8) (len : Nat) (apart : Apart m d) (page : m.userPage d (va / pgsize) = some q) :
    (m.fillPage q va p len).userPage d = m.userPage d := by
  funext v
  rw [Machine.userPage, Machine.userPage, (fillPage_meaning p len apart page).2]

theorem pagesTabled_next (addr : va < 2 ^ 32) (more : 0 < len) (here : m.userPage d (va / pgsize) ≠ none)
    (table : m.table d (va / pgsize / nptentries) ≠ none)
    (memory : ∀ q, m.userPage d (va / pgsize) = some q → q * pgsize < phystop) :
    PagesTabled m d (nextPage va) (len - chunk va len) ↔ PagesTabled m d va len := by
  have page : va / pgsize < 2 ^ 20 := by
    dsimp only [pgsize]
    omega
  have next : nextPage va / pgsize = (va / pgsize + 1) % 2 ^ 20 := by
    dsimp only [nextPage, pgrounddown, pgsize] at page ⊢
    omega
  have start : nextPage va % pgsize = 0 := by
    dsimp only [nextPage, pgrounddown, pgsize]
    omega
  have shift : ∀ i, (nextPage va / pgsize + i) % 2 ^ 20 = (va / pgsize + (i + 1)) % 2 ^ 20 := by
    intro i
    rw [next]
    omega
  have range : ∀ i, 0 < len - chunk va len ∧ i * pgsize < nextPage va % pgsize + (len - chunk va len) ↔
      (i + 1) * pgsize < va % pgsize + len := by
    intro i
    rw [start]
    dsimp only [chunk, pgrounddown, pgsize]
    omega
  have first : (va / pgsize + 0) % 2 ^ 20 = va / pgsize := Nat.mod_eq_of_lt page
  constructor
  · intro tabled i _ inside before
    cases i with
    | zero =>
      rw [first]
      exact ⟨table, memory⟩
    | succ i =>
      obtain ⟨some, inside⟩ := (range i).mpr inside
      have later := tabled i some inside fun j below => by
        rw [shift]
        exact before (j + 1) (by omega)
      rwa [shift] at later
  · intro tabled i some inside before
    have later := tabled (i + 1) more ((range i).mp ⟨some, inside⟩) fun j below => by
      cases j with
      | zero => rwa [first]
      | succ j =>
        rw [← shift]
        exact before j (by omega)
    rwa [← shift] at later

theorem tabled_iff (apart : Apart m d) (addr : va < 2 ^ 32) : Tabled d m va p len ↔ PagesTabled m d va len := by
  induction left : len using Nat.strong_induction_on generalizing va p len m with
  | _ left ih =>
  subst left
  by_cases more : 0 < len
  · have shorter : len - chunk va len < len := Nat.sub_lt more (chunk_pos more va)
    have page : (va / pgsize + 0) % 2 ^ 20 = va / pgsize := by
      dsimp only [pgsize]
      omega
    have first : PagesTabled m d va len → m.table d (va / pgsize / nptentries) ≠ none ∧
        ∀ q, m.userPage d (va / pgsize) = some q → q * pgsize < phystop := by
      intro tabled
      have start : 0 * pgsize < va % pgsize + len := by
        rw [Nat.zero_mul]
        exact Nat.lt_of_lt_of_le more (Nat.le_add_left len _)
      have here := tabled 0 more start fun j below => absurd below (Nat.not_lt_zero j)
      rwa [page] at here
    cases found : m.userPage d (va / pgsize) with
    | none =>
      constructor
      · intro tabled i _ inside before
        cases i with
        | zero =>
          rw [page]
          cases tabled with
          | done => exact absurd more (Nat.lt_irrefl 0)
          | stop table _ => exact ⟨table, fun q held => by rw [found] at held; cases held⟩
          | page held _ _ => rw [found] at held; cases held
        | succ i => exact absurd found (page ▸ before 0 (Nat.succ_pos i))
      · intro tabled
        exact .stop (first tabled).1 found
    | some q =>
      have table := table_of_userPage found
      have same := userPage_fillPage p len apart found
      have tables := (fillPage_meaning p len apart found).1
      have apart' : Apart (m.fillPage q va p len) d := by
        intro v x held
        rw [same] at held
        rw [tables]
        exact apart v x held
      have rest : Tabled d (m.fillPage q va p len) (nextPage va) (fun i => p (chunk va len + i))
            (len - chunk va len) ↔ PagesTabled (m.fillPage q va p len) d (nextPage va) (len - chunk va len) :=
        ih _ shorter apart' (nextPage_lt va) rfl
      have unchanged : PagesTabled (m.fillPage q va p len) d (nextPage va) (len - chunk va len) ↔
          PagesTabled m d (nextPage va) (len - chunk va len) := by
        simp only [PagesTabled, same, tables]
      have here : m.userPage d (va / pgsize) ≠ none := by
        rw [found]
        nofun
      constructor
      · intro tabled
        cases tabled with
        | done => exact absurd more (Nat.lt_irrefl 0)
        | stop _ none => exact absurd none here
        | page held memory later =>
          obtain rfl : q = _ := Option.some.inj (found.symm.trans held)
          exact (pagesTabled_next addr more here table fun x held' => by
            rw [found] at held'
            cases held'
            exact memory).mp (unchanged.mp (rest.mp later))
      · intro tabled
        have memory := (first tabled).2
        exact .page found (memory q found)
          (rest.mpr (unchanged.mpr ((pagesTabled_next addr more here table memory).mpr tabled)))
  · obtain rfl : len = 0 := by omega
    exact iff_of_true .done fun i some _ _ => absurd some more

/-- For every memory, running process, directory, 32-bit address and length: `uva2ka` and
`copyout` only look through pointers to entries, `uva2ka` finds the page of the user and nothing
else, and `copyout` copies everything to pages of the user or returns -1, if and only if the
page of `va` and every page that the copy comes to have a page table, and no page of the user
among them is outside of the memory. -/
theorem copyout_checked_iff (k : Symbols) (m : Machine) (cur : Image) (d : Nat) (va : UInt32) (p : Nat → UInt8)
    (len : Nat) :
    (LookupChecked k m cur d va.toNat ∧ CopyChecked k m cur d va.toNat p len ↔
      m.table d (va.toNat / pgsize / nptentries) ≠ none ∧ Tabled d m va.toNat p len) ∧
    (Apart m d → (Tabled d m va.toNat p len ↔ PagesTabled m d va.toNat len)) := by
  have addr : va.toNat < 2 ^ 32 := va.toNat_lt
  refine ⟨?_, fun apart => tabled_iff apart addr⟩
  rw [lookupChecked_iff k cur addr, copyChecked_iff k cur addr]

end Copyout

/-! ### A word at address 0 -/

/-- Process 512 has written an entry for page 515 at its address 0; directory 516 is empty. -/
def forgedMachine : Machine where
  mem q :=
    if q = 512 then (Bytes.fill 0).setWord 0 (mkPte (513 * pgsize) (pteW ||| pteU))
    else if q = 513 then (Bytes.fill 0).setWord 0 (mkPte (514 * pgsize) (pteW ||| pteU))
    else if q = 514 then (Bytes.fill 0).setWord 0 (mkPte (515 * pgsize) (pteW ||| pteU))
    else Bytes.fill 0
  freelist := []

/-- `copyout` to a directory without any page table reports success, and has stored the byte in
page 515. -/
theorem copyout_through_null :
    (∀ i, forgedMachine.table 516 i = none) ∧
      uva2ka tinyKernel forgedMachine ⟨512, 4096⟩ 516 0xFD000000 = .ok (some 515, forgedMachine) ∧
      copyout tinyKernel forgedMachine ⟨512, 4096⟩ 516 0xFD000000 (fun _ => 65) 1 =
        .ok (true, forgedMachine.setPage 515 ((forgedMachine.mem 515).copy 0 (fun _ => 65) 1)) ∧
      ¬ LookupChecked tinyKernel forgedMachine ⟨512, 4096⟩ 516 0xFD000000 ∧
      ¬ CopyChecked tinyKernel forgedMachine ⟨512, 4096⟩ 516 0xFD000000 (fun _ => 65) 1 := by
  have empty : ∀ i, forgedMachine.table 516 i = none := by
    intro i
    have word : (forgedMachine.mem 516).word i = 0 := rfl
    rw [Machine.table, word]
    exact if_neg fun both => absurd both.2 (by decide)
  have walked : (walkpgdir forgedMachine 516 0xFD000000 false).1 = none := by
    rw [walkpgdir_false (by decide), empty]
    rfl
  have forged : nullWord tinyKernel forgedMachine ⟨512, 4096⟩ =
      .ok (mkPte (515 * pgsize) (pteW ||| pteU), forgedMachine) := by
    have target : access forgedMachine 512 false false 0 = some 514 := by decide
    rw [nullWord, target]
    have word : (forgedMachine.mem 514).word 0 = mkPte (515 * pgsize) (pteW ||| pteU) := by decide
    dsimp only
    rw [word]
  have found : uva2ka tinyKernel forgedMachine ⟨512, 4096⟩ 516 0xFD000000 = .ok (some 515, forgedMachine) := by
    rw [uva2ka, derefPte, walked]
    dsimp only
    rw [forged]
    rfl
  have copied : copyout tinyKernel forgedMachine ⟨512, 4096⟩ 516 0xFD000000 (fun _ => 65) 1 =
      .ok (true, forgedMachine.setPage 515 ((forgedMachine.mem 515).copy 0 (fun _ => 65) 1)) := by
    have start : pgrounddown 0xFD000000 = 0xFD000000 := by decide
    rw [copyout, if_pos Nat.one_pos]
    dsimp only
    rw [start, found]
    dsimp only
    rw [if_neg (by decide), copyout, if_neg (by decide)]
    rfl
  refine ⟨empty, found, copied, fun checked => checked.pointer walked, fun checked => ?_⟩
  have tabled := (copyChecked_iff tinyKernel ⟨512, 4096⟩ (by decide)).mp checked
  cases tabled with
  | stop table _ => exact table (empty _)
  | page page _ _ => exact table_of_userPage page (empty _)

end Xv6Simplesh.Vm
