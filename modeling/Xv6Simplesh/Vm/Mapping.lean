import Xv6Simplesh.Vm.Evolution

/-! # Mapping pages

What `walkpgdir` and `mappages` do to a sound address space.  `walkpgdir` finds the page
table or adds one; `mappages` of one page enters it unless there is a page already, and
`mappages` of a range in the kernel part enters all of it or runs out of memory.
-/

namespace Xv6Simplesh.Vm

open Library Function

/-! ## `walkpgdir` -/

/-- `m'` is `m`, possibly with a new page table `t` at index `i`. -/
structure Walked (k : Symbols) (S : Nat → Prop) (d : Nat) (m₀ m m' : Machine) (i t : Nat) : Prop where
  evo : Evolves k S d m₀ m'
  found : m'.table d i = some t
  pte : m'.pte d = m.pte d
  view : m'.view d = m.view d
  others : ∀ j, j ≠ i → m'.table d j = m.table d j
  fresh : ∀ q, Fresh k S d m q → Fresh k S d m' q ∧ m'.mem q = m.mem q
  total : ∀ n, i < n → m'.total d n = m.total d n
  free : m.table d i = some t ∧ m'.freelist = m.freelist ∨ m.table d i = none ∧ m.freelist = t :: m'.freelist
  /-- Nothing changes if the table is there. -/
  same : ∀ t', m.table d i = some t' → m' = m

section Walk

variable {k : Symbols} {S : Nat → Prop} {d : Nat} {m₀ m : Machine}

theorem walked_self {i t : Nat} (evo : Evolves k S d m₀ m) (found : m.table d i = some t) : Walked k S d m₀ m m i t :=
  ⟨evo, found, rfl, rfl, fun _ _ => rfl, fun _ fresh => ⟨fresh, rfl⟩, fun _ _ => rfl,
    .inl ⟨found, rfl⟩, fun _ _ => rfl⟩

theorem walked_addTable {i t : Nat} {rest : List Nat} (evo : Evolves k S d m₀ m) (inside : i < npdentries)
    (absent : m.table d i = none) (free : m.freelist = t :: rest) :
    Walked k S d m₀ m ((({ m with freelist := rest } : Machine).setPage t (Bytes.fill 0)).setWord d i
      (mkPte (t * pgsize) (pteW ||| pteU))) i t := by
  obtain ⟨evolves₁, fresh⟩ := evo.kalloc free
  obtain ⟨evolves₂, tables, ptes⟩ := evolves₁.addTable fresh inside absent
  have view := view_addTable evolves₁.space fresh inside absent
  refine ⟨evolves₂, by rw [tables, update_self], ptes, view, ?_, ?_, ?_, .inr ⟨absent, free⟩, ?_⟩
  · intro j ne
    rw [tables, update_of_ne ne]
    rfl
  · intro q fresh'
    have apart : q ≠ t := fun same => fresh'.taken (free ▸ same ▸ List.mem_cons_self)
    have dir : q ≠ d := fun same => fresh'.unheld ⟨.dir, same ▸ rfl⟩
    constructor
    · refine ⟨fresh'.allocatable, fresh'.inside, ?_, fun later => fresh'.taken (free ▸ List.mem_cons_of_mem t later)⟩
      rintro ⟨r, holds⟩
      cases r with
      | dir => exact fresh'.unheld ⟨.dir, holds⟩
      | table j =>
        simp only [Machine.holder, tables] at holds
        by_cases same : j = i
        · rw [same, update_self] at holds
          exact apart (Option.some.inj holds).symm
        · rw [update_of_ne same] at holds
          exact fresh'.unheld ⟨.table j, holds⟩
      | page v =>
        simp only [Machine.holder, ptes] at holds
        exact fresh'.unheld ⟨.page v, holds⟩
    · rw [Machine.mem_setWord_of_ne _ _ _ dir, Machine.mem_setPage_of_ne _ _ apart]
  · intro n below
    have stored := occupied_store below absent t
    simp only [Machine.total, view, tables, Machine.freelist_setWord, Machine.freelist_setPage, free,
      List.length_cons]
    rw [show occupied n (update (({ m with freelist := rest } : Machine).table d) i (some t)) = _ from stored]
    have same : ({ m with freelist := rest } : Machine).view d = m.view d := rfl
    rw [same]
    omega
  · intro t' found
    rw [absent] at found
    cases found

theorem walkpgdir_true {va : Nat} (evo : Evolves k S d m₀ m) (bound : va < 2 ^ 32) :
    (walkpgdir m d va true = (none, m) ∧ m.freelist = [] ∧ m.table d (va / pgsize / nptentries) = none) ∨
      ∃ t m', walkpgdir m d va true = (some (t, va / pgsize % nptentries), m') ∧
        Walked k S d m₀ m m' (va / pgsize / nptentries) t := by
  have inside : va / pgsize / nptentries < npdentries := by
    dsimp only [pgsize, nptentries, npdentries]
    omega
  rw [walkpgdir, pdx_eq]
  by_cases entry : present ((m.mem d).word (va / pgsize / nptentries))
  · have found : m.table d (va / pgsize / nptentries) = some (ptePage ((m.mem d).word (va / pgsize / nptentries))) :=
      if_pos ⟨inside, entry⟩
    rw [if_pos entry]
    exact .inr ⟨_, m, rfl, walked_self evo found⟩
  · have absent : m.table d (va / pgsize / nptentries) = none := if_neg fun both => entry both.2
    rw [if_neg entry]
    cases free : m.freelist with
    | nil =>
      rw [kalloc_of_nil free]
      exact .inl ⟨rfl, rfl, absent⟩
    | cons t rest =>
      rw [kalloc_of_cons free]
      exact .inr ⟨t, _, rfl, walked_addTable evo inside absent free⟩

end Walk

/-! ## `mappages` of one page -/

theorem mappages_page_eq (m : Machine) (d pa perm : Nat) {v : Nat} (bound : v < 2 ^ 20) :
    mappages m d (v * pgsize) pgsize pa perm = mappagesLoop m d (v * pgsize) pa perm 0 := by
  have start : pgrounddown (v * pgsize) = v * pgsize := by
    dsimp only [pgrounddown, pgsize]
    omega
  have one : pagesTo (v * pgsize) ((v * pgsize + pgsize - 1) % 2 ^ 32) = 0 := by
    dsimp only [pagesTo, pgsize]
    have first : v * 4096 / 4096 = v := by omega
    have last : (v * 4096 + 4096 - 1) % 2 ^ 32 / 4096 = v := by omega
    rw [first, last, if_neg (Nat.lt_irrefl v), Nat.sub_self]
  rw [mappages, start, one]

section MapPage

variable {k : Symbols} {S : Nat → Prop} {d : Nat} {m₀ m : Machine}

/-- `m'` is `m` with page `q` entered at virtual page `v`. -/
structure Mapped (k : Symbols) (S : Nat → Prop) (d : Nat) (m₀ m m' : Machine) (v q perm : Nat) : Prop where
  evo : Evolves k S d m₀ m'
  pte : m'.pte d = update (m.pte d) v (mkPte (q * pgsize) perm)
  view : m'.view d = update (m.view d) v (some ⟨perm ||| pteP, m.mem q⟩)
  others : ∀ j, j ≠ v / nptentries → m'.table d j = m.table d j
  total : ∀ n, v < userPages → v / nptentries < n → m'.total d n = m.total d n + 1
  table : ∃ t, m'.table d (v / nptentries) = some t ∧
    (m.table d (v / nptentries) = some t ∧ m'.freelist = m.freelist ∨
      m.table d (v / nptentries) = none ∧ m.freelist = t :: m'.freelist)

theorem mappages_page {v q perm : Nat} (evo : Evolves k S d m₀ m) (fresh : Fresh k S d m q) (bound : v < 2 ^ 20)
    (flags : perm < pgsize) (visible : v < userPages ∨ perm.testBit 2) :
    (mappages m d (v * pgsize) pgsize (q * pgsize) perm = (false, m) ∧ m.freelist = [] ∧
        m.table d (v / nptentries) = none) ∨
      (mappages m d (v * pgsize) pgsize (q * pgsize) perm = (true, m) ∧ present (m.pte d v)) ∨
      ∃ m', mappages m d (v * pgsize) pgsize (q * pgsize) perm = (true, m') ∧ ¬ present (m.pte d v) ∧
        Mapped k S d m₀ m m' v q perm := by
  have addr : v * pgsize < 2 ^ 32 := by
    dsimp only [pgsize]
    omega
  have page : v * pgsize / pgsize = v := Nat.mul_div_cancel v (by decide)
  rw [mappages_page_eq m d _ perm bound, mappagesLoop]
  rcases walkpgdir_true evo addr with ⟨failed, empty, absent⟩ | ⟨t, m', walked, grown⟩
  · rw [page] at absent
    rw [failed]
    exact .inl ⟨rfl, empty, absent⟩
  · rw [page] at walked grown
    rw [walked]
    have entry : (m'.mem t).word (v % nptentries) = m.pte d v := by
      rw [← grown.pte, pte_of_table grown.found]
    dsimp only
    rw [entry]
    by_cases there : present (m.pte d v)
    · obtain ⟨t', found⟩ := table_of_present there
      rw [if_pos there, grown.same t' found]
      exact .inr (.inl ⟨rfl, there⟩)
    · rw [if_neg there]
      obtain ⟨fresh', bytes⟩ := grown.fresh q fresh
      have small := mkPte_lt flags fresh.allocatable.lt
      have held : frame v (mkPte (q * pgsize) perm) = some q := frame_mkPte flags visible
      have new : ∀ x, frame v (mkPte (q * pgsize) perm) = some x →
          Fresh k S d m' x ∨ frame v (m'.pte d v) = some x := by
        intro x same
        rw [held] at same
        cases same
        exact .inl fresh'
      obtain ⟨evo', tables, ptes⟩ := grown.evo.setEntry grown.found small
        (fun _ => by rwa [grown.pte]) new
      have view := view_setEntry grown.evo.space grown.found small new
      rw [held, grown.view, Option.map_some, pteFlags_mkPte flags, bytes] at view
      refine .inr (.inr ⟨_, rfl, there, evo', by rw [ptes, grown.pte], view, ?_, ?_,
        ⟨t, by rw [tables, grown.found], grown.free⟩⟩)
      · intro j ne
        rw [tables, grown.others j ne]
      · intro n low below
        have absent : m.view d v = none := by
          rw [view_eq_none, frame, if_neg fun both => there both.1]
        have counted := occupied_store low absent ⟨perm ||| pteP, m.mem q⟩
        have before := grown.total n below
        simp only [Machine.total, view, tables, counted, Machine.freelist_setWord, grown.view] at before ⊢
        omega

/-- Taking a page from the free list and storing into it. -/
theorem Evolves.takePage {q : Nat} {rest : List Nat} (evo : Evolves k S d m₀ m) (free : m.freelist = q :: rest)
    (bytes : Bytes) : Evolves k S d m₀ (({ m with freelist := rest } : Machine).setPage q bytes) ∧
      Fresh k S d (({ m with freelist := rest } : Machine).setPage q bytes) q ∧
      (({ m with freelist := rest } : Machine).setPage q bytes).table d = m.table d ∧
      (({ m with freelist := rest } : Machine).setPage q bytes).pte d = m.pte d ∧
      (({ m with freelist := rest } : Machine).setPage q bytes).view d = m.view d ∧
      ∀ n, (({ m with freelist := rest } : Machine).setPage q bytes).total d n + 1 = m.total d n := by
  obtain ⟨evolves₁, fresh⟩ := evo.kalloc free
  obtain ⟨evolves₂, tables, ptes⟩ := evolves₁.setPage fresh.inside (fun r holds => absurd ⟨r, holds⟩ fresh.unheld) bytes
  have view := fresh.view_setPage bytes
  refine ⟨evolves₂, ⟨fresh.allocatable, fresh.inside, ?_, fresh.taken⟩, tables, ptes, view, fun n => ?_⟩
  · rw [holder_congr tables ptes]
    exact fresh.unheld
  · have sameView : ({ m with freelist := rest } : Machine).view d = m.view d := rfl
    have sameTables : ({ m with freelist := rest } : Machine).table d = m.table d := rfl
    simp only [Machine.total, view, tables, sameView, sameTables, Machine.freelist_setPage, free, List.length_cons]
    omega

end MapPage

end Xv6Simplesh.Vm
