import Xv6Simplesh.Vm.Growth
import Xv6Simplesh.Vm.KernelMap

/-! # Copying an address space

`copyuvm` copies the pages below the size of a process one by one.  It stops with a panic at
the first page table that is missing, and at the first page that is missing it returns at
once: what it has built by then belongs to nobody.  Only where memory runs out does it give
everything back.  How far it gets depends on nothing but the pages that are present and the
number of free pages.
-/

namespace Xv6Simplesh.Vm

open Library Function

/-- The number of page tables for the pages below `n`. -/
def tablesFor (n : Nat) : Nat := (n + nptentries - 1) / nptentries

/-- The free pages that a copy of the pages below `n` takes: the directory, the page tables
of the kernel part and of the user part, and the pages. -/
def copyCost (n : Nat) : Nat := 65 + n + tablesFor n

theorem copyCost_mono {n n' : Nat} (le : n ≤ n') : copyCost n ≤ copyCost n' := by
  dsimp only [copyCost, tablesFor, nptentries]
  omega

/-- The copy `d` of the pages below `v` of address space `c` of machine `m`, while it is
made. -/
structure Copying (k : Symbols) (m : Machine) (c d : Nat) (m₁ : Machine) (v : Nat) (m' : Machine) : Prop where
  evo : Evolves k (· ∈ m.freelist) d m₁ m'
  outside : ∀ q, q ∉ m.freelist → m'.mem q = m.mem q
  kernel : KernelMapped k m' d
  view : ∀ u, m'.view d u = if u < v then m.view c u else none
  tables : ∀ i, (m'.table d i).isSome ↔ i ∈ kernelTables ∨ i * nptentries < v
  total : m'.total d npdentries + 1 = m.freelist.length
  there : ∀ u < v, present (m.pte c u)

/-- How `copyuvm` of the pages below `n` ends. -/
inductive Copied (k : Symbols) (m : Machine) (c n : Nat) : Except Panic (Option Nat × Machine) → Prop where
  | done {d : Nat} {m₁ m' : Machine} (copying : Copying k m c d m₁ n m') : Copied k m c n (.ok (some d, m'))
  /-- A page is missing: the copy so far is lost. -/
  | hole {h : Nat} {m' : Machine} (inside : h < n) (there : ∀ u < h, present (m.pte c u))
      (table : m.table c (h / nptentries) ≠ none) (absent : ¬ present (m.pte c h))
      (enough : copyCost h ≤ m.freelist.length) (within : Within k (· ∈ m.freelist) m m')
      (lost : m'.freelist.length < m.freelist.length) : Copied k m c n (.ok (none, m'))
  /-- There is not enough memory for the first `h` pages: everything is given back. -/
  | noMemory {h : Nat} {m' : Machine} (inside : h ≤ n) (there : ∀ u < h, present (m.pte c u))
      (few : m.freelist.length < copyCost h) (within : Within k (· ∈ m.freelist) m m')
      (all : m'.freelist.length = m.freelist.length) : Copied k m c n (.ok (none, m'))
  | noTable {h : Nat} (inside : h < n) (there : ∀ u < h, present (m.pte c u))
      (absent : m.table c (h / nptentries) = none) (enough : copyCost h ≤ m.freelist.length) :
      Copied k m c n (.error .copyuvm)

section Copy

variable {k : Symbols} {m m₁ m' : Machine} {c d v : Nat}

theorem Copying.within (copying : Copying k m c d m₁ v m') : Within k (· ∈ m.freelist) m m' :=
  ⟨copying.evo.space.toPool, copying.outside, fun q free => copying.evo.inside q (.inr free)⟩

theorem Copying.start (copying : Copying k m c d m₁ v m') {q : Nat} (out : q ∉ m.freelist) : m₁.mem q = m.mem q := by
  rw [← copying.evo.outside q out, copying.outside q out]

theorem Copying.kept (copying : Copying k m c d m₁ v m') (space : Space k m c) : Kept m m' c :=
  kept_of_bytes fun q held => copying.outside q (space.apart held)

/-! ## Counting -/

theorem disjoint_kernelTables {n : Nat} (user : n ≤ userPages) :
    Disjoint kernelTables (Finset.range (tablesFor n)) := by
  rw [Finset.disjoint_left]
  intro i kernel low
  rw [mem_kernelTables] at kernel
  rw [Finset.mem_range] at low
  dsimp only [tablesFor, nptentries, userPages] at *
  omega

theorem Copying.length (copying : Copying k m c d m₁ v m') (user : v ≤ userPages) :
    m'.freelist.length + copyCost v = m.freelist.length := by
  have pages : occupied userPages (m'.view d) = (Finset.range v).card := by
    apply occupied_eq
    · intro u mem
      exact Nat.lt_of_lt_of_le (Finset.mem_range.mp mem) user
    · intro u low
      rw [copying.view, Finset.mem_range]
      by_cases below : u < v
      · rw [if_pos below, Option.isSome_iff_ne_none]
        exact iff_of_true (fun none => not_present_of_view low none (copying.there u below)) below
      · rw [if_neg below]
        exact iff_of_false nofun below
  have tables : occupied npdentries (m'.table d) = (kernelTables ∪ Finset.range (tablesFor v)).card := by
    apply occupied_eq
    · intro i mem
      rw [Finset.mem_union, mem_kernelTables, Finset.mem_range] at mem
      dsimp only [tablesFor, nptentries, npdentries, userPages] at *
      omega
    · intro i _
      have row : i * nptentries < v ↔ i < tablesFor v := by
        dsimp only [tablesFor, nptentries]
        omega
      rw [copying.tables, Finset.mem_union, Finset.mem_range, row]
  have total := copying.total
  rw [Machine.total, pages, tables, Finset.card_range, Finset.card_union_of_disjoint (disjoint_kernelTables user),
    card_kernelTables, Finset.card_range] at total
  dsimp only [copyCost]
  omega

/-! ## One page -/

theorem pteFlags_or {pte : Nat} (there : present pte) : pteFlags pte ||| pteP = pteFlags pte := by
  apply Nat.eq_of_testBit_eq
  intro i
  rw [Nat.testBit_or]
  by_cases first : i = 0
  · subst first
    have bit : (pteFlags pte).testBit 0 = true := by rw [testBit_pteFlags _ (by decide)]; exact there
    rw [bit, Bool.true_or]
  · have none : pteP.testBit i = false := by
      rw [Bool.eq_false_iff]
      intro one
      exact first (Nat.testBit_one_eq_true_iff_self_eq_zero.mp one)
    rw [none, Bool.or_false]

theorem Copying.step {q : Nat} {rest : List Nat} {m'' : Machine} (copying : Copying k m c d m₁ v m')
    (space : Space k m c) (low : v < userPages) (there : present (m.pte c v)) (free : m'.freelist = q :: rest)
    (mapped : Mapped k (· ∈ m.freelist) d m₁ (m'.taken q rest (m'.mem (ptePage (m.pte c v)))) m'' v q
      (pteFlags (m.pte c v))) : Copying k m c d m₁ (v + 1) m'' := by
  obtain ⟨-, -, tables, ptes, view, total⟩ := copying.evo.takePage free (m'.mem (ptePage (m.pte c v)))
  have src : m.view c v = some ⟨pteFlags (m.pte c v), m.mem (ptePage (m.pte c v))⟩ :=
    view_of_frame (frame_eq_some.mpr ⟨there, .inl low, rfl⟩)
  have page : m'.mem (ptePage (m.pte c v)) = m.mem (ptePage (m.pte c v)) :=
    copying.outside _ (space.apart ⟨.page v, frame_eq_some.mpr ⟨there, .inl low, rfl⟩⟩)
  have entered : present (m''.pte d v) := by
    rw [mapped.pte, update_self]
    exact present_mkPte (Nat.mod_lt _ (by decide))
  refine ⟨mapped.evo, ?_, ?_, ?_, ?_, ?_, ?_⟩
  · intro x out
    rw [mapped.evo.outside x out, ← copying.evo.outside x out, copying.outside x out]
  · constructor
    intro u kernel
    have high := kernel.high
    rw [mapped.pte, update_of_ne (by omega), ptes, copying.kernel.pte u kernel]
  · intro u
    rw [mapped.view, view]
    by_cases same : u = v
    · rw [same, update_self, if_pos (Nat.lt_succ_self v), src, pteFlags_or there, Machine.mem_setPage_self,
        page]
    · have below : u < v + 1 ↔ u < v := by omega
      rw [update_of_ne same, copying.view]
      simp only [below]
  · intro i
    by_cases same : i = v / nptentries
    · obtain ⟨t, found⟩ := table_of_present entered
      have row : i * nptentries < v + 1 := by
        dsimp only [nptentries] at same ⊢
        omega
      rw [same, found]
      exact iff_of_true rfl (.inr (same ▸ row))
    · have row : i * nptentries < v + 1 ↔ i * nptentries < v := by
        dsimp only [nptentries] at same ⊢
        omega
      rw [mapped.others i same, tables, copying.tables, row]
  · have table : v / nptentries < npdentries := by
      dsimp only [nptentries, npdentries, userPages] at low ⊢
      omega
    rw [mapped.total npdentries low table, total]
    exact copying.total
  · intro u below
    by_cases same : u = v
    · exact same ▸ there
    · exact copying.there u (by omega)

/-! ## The loop -/

theorem copyuvmLoop_copied {sz : Nat} (space : Space k m c) (user : sz ≤ kernbase)
    (copying : Copying k m c d m₁ v m') (begun : v ≤ pageCount sz) :
    Copied k m c (pageCount sz) (copyuvmLoop k m' c d sz (v * pgsize)) := by
  induction left : pageCount sz - v using Nat.strong_induction_on generalizing v m' with
  | _ left ih =>
  subst left
  have limit := pageCount_le user
  have cost := copying.length (Nat.le_trans begun limit)
  rw [copyuvmLoop]
  by_cases more : v * pgsize < sz
  · have inside : v < pageCount sz := lt_pageCount.mpr more
    have low : v < userPages := Nat.lt_of_lt_of_le inside limit
    have page : v * pgsize / pgsize = v := Nat.mul_div_cancel v (by decide)
    have addr : v * pgsize < 2 ^ 32 := by
      dsimp only [pgsize, userPages] at low ⊢
      omega
    have next : v * pgsize + pgsize = (v + 1) * pgsize := (Nat.succ_mul v pgsize).symm
    have enough : copyCost v ≤ m.freelist.length := by omega
    have kept := copying.kept space
    rw [if_pos more, walkpgdir_false addr, page, kept.table]
    cases found : m.table c (v / nptentries) with
    | none => exact .noTable inside copying.there found enough
    | some t =>
      have entry : (m'.mem t).word (v % nptentries) = m.pte c v := by
        rw [← kept.pte, pte_of_table (kept.table ▸ found)]
      simp only [Option.map_some, entry]
      by_cases there : present (m.pte c v)
      · have all : ∀ u < v + 1, present (m.pte c u) := by
          intro u below
          by_cases same : u = v
          · exact same ▸ there
          · exact copying.there u (by omega)
        simp only [there, Bool.not_true, Bool.false_eq_true, if_false]
        cases free : m'.freelist with
        | nil =>
          -- no page: the copy so far is given back
          obtain ⟨m'', freed, within, length⟩ := freevm_within copying.evo
          simp only [kalloc_of_nil free, freed, bind, Except.bind]
          refine .noMemory inside all ?_ ?_ (length.trans copying.total)
          · rw [free, List.length_nil] at cost
            dsimp only [copyCost, tablesFor, nptentries] at cost ⊢
            omega
          · exact within.of_outside fun q out => copying.start out
        | cons q rest =>
          obtain ⟨evolves₁, fresh, tables, ptes, -, total⟩ :=
            copying.evo.takePage free (m'.mem (ptePage (m.pte c v)))
          have empty : ¬ present (m'.pte d v) :=
            not_present_of_view low (by rw [copying.view, if_neg (Nat.lt_irrefl v)])
          have flags : pteFlags (m.pte c v) < pgsize := Nat.mod_lt _ (by decide)
          have outcome := mappages_page (v := v) evolves₁ fresh (Nat.lt_trans low (by decide)) flags (.inl low)
          rw [tables, ptes] at outcome
          rw [kalloc_of_cons free]
          dsimp only
          rcases outcome with ⟨ran, last, absent⟩ | ⟨-, present⟩ | ⟨m'', ran, -, mapped⟩
          · -- no page table: the page and the copy so far are given back
            obtain ⟨evolves₂, -, -⟩ := evolves₁.push fresh
            obtain ⟨m'', freed, within, length⟩ := freevm_within evolves₂
            simp only [ran, Evolves.kfree fresh, freed, bind, Except.bind]
            refine .noMemory inside all ?_ (within.of_outside fun q out => copying.start out) ?_
            · have one : rest = [] := last
              rw [free, one, List.length_singleton] at cost
              have boundary : ¬ v / nptentries * nptentries < v := by
                intro begun
                have table := (copying.tables (v / nptentries)).mpr (.inr begun)
                rw [absent] at table
                cases table
              dsimp only [copyCost, tablesFor, nptentries] at cost boundary ⊢
              omega
            · rw [length, fresh.total_push, total]
              exact copying.total
          · exact absurd present empty
          · rw [ran, next]
            exact ih _ (by omega) (copying.step space low there free mapped) inside rfl
      · simp only [there, Bool.not_false, if_true]
        refine .hole inside copying.there (by rw [found]; exact Option.some_ne_none _) there enough copying.within ?_
        dsimp only [copyCost] at cost
        omega
  · rw [if_neg more]
    have ended : v = pageCount sz :=
      Nat.le_antisymm begun (Nat.le_of_not_lt fun inside => more (lt_pageCount.mp inside))
    exact .done (ended ▸ copying)

theorem NewSpace.copying (new : NewSpace k (· ∈ m.freelist) m m₁ d) : Copying k m c d m₁ 0 m₁ where
  evo := new.evo
  outside := new.outside
  kernel := new.kernel
  view u := by rw [new.view, if_neg (Nat.not_lt_zero u)]
  tables i := by
    constructor
    · intro found
      by_contra other
      rw [new.tables i fun kernel => other (.inl kernel)] at found
      cases found
    · intro kernel
      have inside : KernelPage (i * nptentries) := by
        rw [mem_kernelTables] at kernel
        dsimp only [KernelPage, userPages, nptentries] at *
        omega
      have row : i * nptentries / nptentries = i := Nat.mul_div_cancel i (by decide)
      obtain ⟨t, found⟩ := table_of_present (new.kernel.pte _ inside ▸ (kernelPte_flags k (i * nptentries)).1)
      rw [row] at found
      rw [found]
      rfl
  total := new.total
  there := nofun

theorem copyuvm_copied {sz : Nat} (space : Space k m c) (user : sz ≤ kernbase) :
    Copied k m c (pageCount sz) (copyuvm k m c sz) := by
  rcases setupkvm_spec (S := (· ∈ m.freelist)) space.toPool (fun _ free => free) with
    ⟨d, m₁, made, new⟩ | ⟨m₁, made, within, length, few⟩
  · simp only [copyuvm, made, bind, Except.bind]
    rw [← Nat.zero_mul pgsize]
    exact copyuvmLoop_copied space user new.copying (Nat.zero_le _)
  · simp only [copyuvm, made, bind, Except.bind]
    exact .noMemory (Nat.zero_le _) nofun few within length

end Copy

end Xv6Simplesh.Vm
