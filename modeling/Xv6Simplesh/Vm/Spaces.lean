import Xv6Simplesh.Library.Ownership
import Xv6Simplesh.Vm.PageTables

/-! # Address spaces

What a page directory means: which page tables it has, the entry for each virtual page,
and the pages that it owns.  A page is owned as the directory, as a page table, or as
the page behind an entry of the user part or an entry with `PTE_U`; the other entries
of the kernel part refer to memory that belongs to others.  The lemmas say how the
stores of `vm.c` change this meaning.
-/

namespace Xv6Simplesh.Vm

open Library Function

/-- The virtual pages below `KERNBASE`. -/
abbrev userPages : Nat := 0x80000

/-! ## The meaning of a page directory -/

/-- What a page is used for. -/
inductive Role where
  | dir
  | table (i : Nat)
  | page (v : Nat)
deriving DecidableEq

/-- The page that entry `pte` gives to virtual page `v` of the user. -/
def frame (v pte : Nat) : Option Nat :=
  if present pte ∧ (v < userPages ∨ user pte) then some (ptePage pte) else none

namespace Machine

def table (m : Machine) (d i : Nat) : Option Nat :=
  if i < npdentries ∧ present ((m.mem d).word i) then some (ptePage ((m.mem d).word i)) else none

/-- The entry for virtual page `v`, 0 without a page table. -/
def pte (m : Machine) (d v : Nat) : Nat :=
  match m.table d (v / nptentries) with
  | none => 0
  | some t => (m.mem t).word (v % nptentries)

def holder (m : Machine) (d : Nat) : Role → Option Nat
  | .dir => some d
  | .table i => m.table d i
  | .page v => frame v (m.pte d v)

end Machine

theorem frame_eq_some {v pte q : Nat} :
    frame v pte = some q ↔ present pte ∧ (v < userPages ∨ user pte) ∧ ptePage pte = q := by
  unfold frame
  split
  next held => simp [held]
  next free => simp_all

theorem frame_mkPte {v q perm : Nat} (flags : perm < pgsize) (visible : v < userPages ∨ perm.testBit 2) :
    frame v (mkPte (q * pgsize) perm) = some q :=
  frame_eq_some.mpr ⟨present_mkPte flags, by rwa [user_mkPte flags], ptePage_mkPte flags⟩

theorem frame_mkPte_kernel {v q perm : Nat} (flags : perm < pgsize) (kernel : userPages ≤ v)
    (hidden : perm.testBit 2 = false) : frame v (mkPte (q * pgsize) perm) = none := by
  rw [frame, if_neg]
  rw [user_mkPte flags, hidden]
  simp [kernel]

section Lookup

variable {m m' : Machine} {d i v t : Nat}

theorem pte_of_table (found : m.table d (v / nptentries) = some t) : m.pte d v = (m.mem t).word (v % nptentries) := by
  rw [Machine.pte, found]

theorem pte_of_none (absent : m.table d (v / nptentries) = none) : m.pte d v = 0 := by
  rw [Machine.pte, absent]

theorem pte_lt (m : Machine) (d v : Nat) : m.pte d v < 2 ^ 32 := by
  unfold Machine.pte
  split
  · decide
  · exact Bytes.word_lt ..

theorem table_of_present (entry : present (m.pte d v)) : ∃ t, m.table d (v / nptentries) = some t := by
  cases found : m.table d (v / nptentries) with
  | some t => exact ⟨t, rfl⟩
  | none =>
    rw [pte_of_none found] at entry
    cases entry

theorem table_congr (dir : m'.mem d = m.mem d) : m'.table d = m.table d := by
  funext i
  rw [Machine.table, Machine.table, dir]

theorem pte_congr (dir : m'.mem d = m.mem d)
    (tables : ∀ i t, m.table d i = some t → m'.mem t = m.mem t) : m'.pte d = m.pte d := by
  funext v
  rw [Machine.pte, Machine.pte, table_congr dir]
  cases found : m.table d (v / nptentries) with
  | none => rfl
  | some t => exact congrArg (fun bytes => Bytes.word bytes (v % nptentries)) (tables _ t found)

theorem holder_congr (tables : m'.table d = m.table d) (ptes : m'.pte d = m.pte d) : m'.holder d = m.holder d := by
  funext r
  cases r with
  | dir => rfl
  | table i => exact congrFun tables i
  | page v => exact congrArg (frame v) (congrFun ptes v)

end Lookup

/-! ## `walkpgdir` without allocation -/

theorem pdx_eq (va : Nat) : pdx va = va / pgsize / nptentries := by
  rw [pdx, Nat.div_div_eq_div_mul]
  rfl

theorem walkpgdir_false {m : Machine} {d va : Nat} (bound : va < 2 ^ 32) :
    (walkpgdir m d va false).1 = (m.table d (va / pgsize / nptentries)).map fun t => (t, va / pgsize % nptentries) := by
  have inside : va / pgsize / nptentries < npdentries := by
    dsimp only [pgsize, nptentries, npdentries]
    omega
  rw [walkpgdir, pdx_eq]
  by_cases entry : present ((m.mem d).word (va / pgsize / nptentries))
  · have found : m.table d (va / pgsize / nptentries) = some (ptePage ((m.mem d).word (va / pgsize / nptentries))) :=
      if_pos ⟨inside, entry⟩
    rw [if_pos entry, found]
    rfl
  · have found : m.table d (va / pgsize / nptentries) = none := if_neg fun both => entry both.2
    rw [if_neg entry, found]
    rfl

/-! ## Stores -/

section Stores

variable {m : Machine} {d : Nat}

/-- A page that is neither the directory nor a page table can hold any data. -/
theorem meaning_setPage {q : Nat} (bytes : Bytes) (data : ∀ r, m.holder d r = some q → ∃ v, r = .page v) :
    (m.setPage q bytes).table d = m.table d ∧ (m.setPage q bytes).pte d = m.pte d := by
  have dir : d ≠ q := by
    rintro rfl
    obtain ⟨v, same⟩ := data .dir rfl
    cases same
  have same : (m.setPage q bytes).mem d = m.mem d := m.mem_setPage_of_ne bytes dir
  refine ⟨table_congr same, pte_congr same fun i t found => m.mem_setPage_of_ne bytes ?_⟩
  rintro rfl
  obtain ⟨v, same⟩ := data (.table i) found
  cases same

theorem meaning_setEntry {t v w : Nat} (exclusive : Exclusive (m.holder d))
    (found : m.table d (v / nptentries) = some t) (bound : w < 2 ^ 32) :
    (m.setWord t (v % nptentries) w).table d = m.table d ∧
      (m.setWord t (v % nptentries) w).pte d = update (m.pte d) v w := by
  have dir : d ≠ t := by
    rintro rfl
    have same : Role.dir = .table (v / nptentries) := exclusive rfl found
    cases same
  have tables : (m.setWord t (v % nptentries) w).table d = m.table d :=
    table_congr (m.mem_setWord_of_ne _ _ dir)
  refine ⟨tables, ?_⟩
  funext u
  by_cases row : u / nptentries = v / nptentries
  · have found' : m.table d (u / nptentries) = some t := row ▸ found
    rw [pte_of_table (tables ▸ found' : (m.setWord t (v % nptentries) w).table d _ = some t), m.mem_setWord_self]
    by_cases same : u = v
    · rw [same, update_self, Bytes.word_setWord_of_lt _ _ bound]
    · have column : v % nptentries ≠ u % nptentries := by
        dsimp only [nptentries] at row ⊢
        omega
      rw [update_of_ne same, Bytes.word_setWord_ne _ _ column, pte_of_table found']
  · have ne : u ≠ v := fun same => row (same ▸ rfl)
    rw [update_of_ne ne, Machine.pte, Machine.pte, tables]
    cases found' : m.table d (u / nptentries) with
    | none => rfl
    | some t' =>
      have apart : t' ≠ t := by
        rintro rfl
        have same : Role.table (u / nptentries) = .table (v / nptentries) := exclusive found' found
        exact row (Role.table.inj same)
      exact congrArg (fun bytes => Bytes.word bytes (u % nptentries)) (m.mem_setWord_of_ne _ _ apart)

theorem meaning_addTable {t i : Nat} (exclusive : Exclusive (m.holder d)) (inside : i < npdentries)
    (absent : m.table d i = none) (fresh : ¬ Held (m.holder d) t) (page : t < 2 ^ 20) :
    ((m.setPage t (Bytes.fill 0)).setWord d i (mkPte (t * pgsize) (pteW ||| pteU))).table d =
        update (m.table d) i (some t) ∧
      ((m.setPage t (Bytes.fill 0)).setWord d i (mkPte (t * pgsize) (pteW ||| pteU))).pte d = m.pte d := by
  have flags : pteW ||| pteU < pgsize := by decide
  have entry := mkPte_lt flags page
  have dir : t ≠ d := by
    rintro rfl
    exact fresh ⟨.dir, rfl⟩
  have dirBytes : (m.setPage t (Bytes.fill 0)).mem d = m.mem d := m.mem_setPage_of_ne _ dir.symm
  have tables' : ((m.setPage t (Bytes.fill 0)).setWord d i (mkPte (t * pgsize) (pteW ||| pteU))).table d =
      update (m.table d) i (some t) := by
    funext j
    rw [Machine.table, Machine.mem_setWord_self, dirBytes]
    by_cases same : j = i
    · rw [same, Bytes.word_setWord_of_lt _ _ entry, update_self, ptePage_mkPte flags,
        if_pos ⟨inside, present_mkPte flags⟩]
    · rw [Bytes.word_setWord_ne _ _ (Ne.symm same), update_of_ne same, Machine.table]
  refine ⟨tables', ?_⟩
  funext v
  rw [Machine.pte, tables', Machine.pte]
  by_cases row : v / nptentries = i
  · rw [row, update_self, absent]
    dsimp only
    rw [Machine.mem_setWord_of_ne _ _ _ dir, Machine.mem_setPage_self, Bytes.word_fill_zero]
  · rw [update_of_ne row]
    cases found : m.table d (v / nptentries) with
    | none => rfl
    | some t' =>
      have apart : t' ≠ t := fun same => fresh ⟨.table _, same ▸ found⟩
      have apart' : t' ≠ d := by
        rintro rfl
        have same : Role.dir = .table (v / nptentries) := exclusive rfl found
        cases same
      dsimp only
      rw [Machine.mem_setWord_of_ne _ _ _ apart', Machine.mem_setPage_of_ne _ _ apart]

end Stores

end Xv6Simplesh.Vm
